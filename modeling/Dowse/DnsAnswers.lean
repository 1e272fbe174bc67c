import Dowse.DnsAttribution

/-!
# How a call ends

For a question that the filter accepts, a call has four ways to end. A question under `arpa.`
may be answered or dropped on the spot. The publication may not return. A client that the
portal does not let pass is pointed to it. For any other the answer is that of the lease, if
the volatile redis has one, or else that of the cache, and a query without an answer goes on,
unless the plugin is offline.
-/
namespace Dowse.DnsPlugin
open CStrings RedisFormat Std.Do

set_option mvcgen.warning false

attribute [local irreducible] snprintf

/-- The question that the filter goes on with, if it accepts the packet. -/
def acceptedQuestion (env : Env) (packet : Packet) : Option (LdnsPkt × Question) :=
  if packet.wire.length > maxDns then none
  else
    (env.wire2pkt packet.wire).bind fun pkt => pkt.question.bind fun question =>
      if (questionText env question).length = 0 then none else some (pkt, question)

theorem acceptedQuestion_eq_some_iff {env : Env} {packet : Packet} {pkt : LdnsPkt}
    {question : Question} : acceptedQuestion env packet = some (pkt, question) ↔
      packet.wire.length ≤ maxDns ∧ env.wire2pkt packet.wire = some pkt ∧
        pkt.question = some question ∧ questionText env question ≠ [] := by
  unfold acceptedQuestion
  split_ifs with hlong
  · exact iff_of_false nofun fun h => absurd h.1 (Nat.not_le.mpr hlong)
  · simp only [Option.bind_eq_some_iff, Option.ite_none_left_eq_some, Option.some.injEq,
      Prod.mk.injEq, List.length_eq_zero_iff]
    constructor
    · rintro ⟨_, hpkt, _, hquestion, hne, rfl, rfl⟩
      exact ⟨Nat.le_of_not_lt hlong, hpkt, hquestion, hne⟩
    · rintro ⟨-, hpkt, hquestion, hne⟩
      exact ⟨pkt, hpkt, question, hquestion, hne, rfl, rfl⟩

theorem acceptedQuestion_ne_nil {env : Env} {packet : Packet} {pkt : LdnsPkt} {question : Question}
    (h : acceptedQuestion env packet = some (pkt, question)) : questionText env question ≠ [] :=
  (acceptedQuestion_eq_some_iff.mp h).2.2.2

/-- The server behind a connection answers a command with a value. -/
def Holds (env : Env) (conn : Conn) (command : Text) (reply : Reply) : Prop :=
  received env conn command = some reply ∧ reply.len ≠ 0

/-- A question does not end as a reverse query: it is not under `arpa.`, or it is a name for
which the storage has nothing. -/
def PastReverse (env : Env) (text : Text) : Prop :=
  isReverse env text = true → env.dname text = some true ∧
    ∀ reply, ¬ Holds env .storage (reverseCommand env text) reply

section Replies
variable {env : Env} {id : UInt16} {question : Question}

theorem replyAnswer_eq_some_iff {kind : Text → Answer} {record : Option Text → Text} {conn : Conn}
    {command : Text} {r : Result} :
    replyAnswer env id question kind record (received env conn command) = some r ↔
      ∃ reply, Holds env conn command reply ∧
        r = respond env id question (kind (record reply.str)) (record reply.str) := by
  unfold replyAnswer Holds
  cases received env conn command with
  | none => simp
  | some reply =>
      simp only [Option.some.injEq]
      split_ifs with hlen
      · simp only [Option.some.injEq, and_assoc, exists_eq_left', hlen, ne_eq, not_false_eq_true,
          true_and, eq_comm]
      · simp [not_not.mp hlen]

theorem leaseOutcome_eq_some_iff {query : Text} {r : Result} :
    leaseOutcome env id question query = some r ↔
      ∃ reply, Holds env .dynamic (leaseCommand query) reply ∧
        r = respond env id question (.lease (aRecord query (printed reply.str)))
          (aRecord query (printed reply.str)) :=
  replyAnswer_eq_some_iff

theorem leaseOutcome_eq_none_iff {query : Text} :
    leaseOutcome env id question query = none ↔
      ∀ reply, ¬ Holds env .dynamic (leaseCommand query) reply := by
  constructor
  · intro h reply hholds
    exact Option.some_ne_none _
      ((leaseOutcome_eq_some_iff.mpr ⟨reply, hholds, rfl⟩).symm.trans h)
  · intro h
    refine Option.eq_none_iff_forall_ne_some.mpr fun r hr => ?_
    obtain ⟨reply, hholds, -⟩ := leaseOutcome_eq_some_iff.mp hr
    exact h reply hholds

/-- How a question under `arpa.` ends. -/
theorem reverseOutcome_eq_some_iff {text : Text} {r : Result} :
    reverseOutcome env id question text = some r ↔ isReverse env text = true ∧
      (env.dname text = none ∧ r = .crash ∨ env.dname text = some false ∧ r = .kill ∨
        env.dname text = some true ∧ ∃ reply, Holds env .storage (reverseCommand env text) reply ∧
          r = respond env id question (.reverse (ptrRecord text reply.str))
            (ptrRecord text reply.str)) := by
  unfold reverseOutcome
  split_ifs with hreverse
  · rw [and_iff_right hreverse]
    split
    · simp [*, eq_comm]
    · simp [*, eq_comm]
    · rename_i hname
      simp only [hname, reduceCtorEq, Option.some.injEq, Bool.true_eq_false, false_and, false_or,
        true_and]
      exact replyAnswer_eq_some_iff
  · simp [hreverse]

theorem reverseOutcome_of_holds {text : Text} {reply : Reply} (hreverse : isReverse env text = true)
    (hname : env.dname text = some true)
    (h : Holds env .storage (reverseCommand env text) reply) :
    reverseOutcome env id question text = some (respond env id question
      (.reverse (ptrRecord text reply.str)) (ptrRecord text reply.str)) :=
  reverseOutcome_eq_some_iff.mpr ⟨hreverse, .inr (.inr ⟨hname, reply, h, rfl⟩)⟩

theorem reverseOutcome_eq_none_iff {text : Text} :
    reverseOutcome env id question text = none ↔ PastReverse env text := by
  rw [Option.eq_none_iff_forall_ne_some]
  unfold PastReverse
  simp only [ne_eq, reverseOutcome_eq_some_iff]
  constructor
  · intro h hreverse
    cases hname : env.dname text with
    | none => exact absurd ⟨hreverse, .inl ⟨hname, rfl⟩⟩ (h .crash)
    | some named =>
        cases named with
        | false => exact absurd ⟨hreverse, .inr (.inl ⟨hname, rfl⟩)⟩ (h .kill)
        | true =>
            refine ⟨rfl, fun reply hholds => ?_⟩
            exact h _ ⟨hreverse, .inr (.inr ⟨hname, reply, hholds, rfl⟩)⟩
  · rintro h r ⟨hreverse, ⟨hname, -⟩ | ⟨hname, -⟩ | ⟨-, reply, hholds, -⟩⟩
    · cases hname.symm.trans (h hreverse).1
    · cases hname.symm.trans (h hreverse).1
    · exact (h hreverse).2 reply hholds

theorem PastReverse.outcome_eq {text : Text} (h : PastReverse env text) (id : UInt16)
    (question : Question) : reverseOutcome env id question text = none :=
  reverseOutcome_eq_none_iff.mpr h

end Replies

section Stages

def cacheCommand (query : Text) : Text := snprintf 511 ("GET dns-cache-".toList ++ query)

/-- What the cache has for a query. -/
def cacheOutcome (env : Env) (data : PluginData) (wire : Wire) : Option Result :=
  data.cache.bind fun conn => (received env conn (cacheCommand data.query)).bind fun reply =>
    if reply.len ≠ 0 then some (cachedPacket wire reply) else none

/-- How a query ends that has passed the portal. -/
def endpointOutcome (env : Env) (id : UInt16) (question : Question) (text : Text) (wire : Wire)
    (data : PluginData) : Result :=
  ((leaseOutcome env id question data.query).or (cacheOutcome env data wire)).getD
    (if data.offline then
      offlineAnswer env id question (offlineRecord data.reverse text data.query)
    else .ok)

theorem cacheOutcome_eq_some_iff {env : Env} {data : PluginData} {wire : Wire} {r : Result} :
    cacheOutcome env data wire = some r ↔ ∃ conn reply, data.cache = some conn ∧
      Holds env conn (cacheCommand data.query) reply ∧ r = cachedPacket wire reply := by
  unfold cacheOutcome Holds
  simp only [Option.bind_eq_some_iff, Option.ite_none_right_eq_some, Option.some.injEq]
  constructor
  · rintro ⟨conn, hcache, reply, hreply, hlen, rfl⟩
    exact ⟨conn, reply, hcache, ⟨hreply, hlen⟩, rfl⟩
  · rintro ⟨conn, reply, hcache, ⟨hreply, hlen⟩, rfl⟩
    exact ⟨conn, hcache, reply, hreply, hlen, rfl⟩

theorem cacheOutcome_eq_none_iff {env : Env} {data : PluginData} {wire : Wire} :
    cacheOutcome env data wire = none ↔ ∀ conn reply, data.cache = some conn →
      ¬ Holds env conn (cacheCommand data.query) reply := by
  constructor
  · intro h conn reply hcache hholds
    exact Option.some_ne_none _
      ((cacheOutcome_eq_some_iff.mpr ⟨conn, reply, hcache, hholds, rfl⟩).symm.trans h)
  · intro h
    refine Option.eq_none_iff_forall_ne_some.mpr fun r hr => ?_
    obtain ⟨conn, reply, hcache, hholds, -⟩ := cacheOutcome_eq_some_iff.mp hr
    exact h conn reply hcache hholds

theorem cacheOutcome_eq {env : Env} {data : PluginData} {conn : Conn} {reply : Option Reply}
    (hcache : data.cache = some conn)
    (hreply : reply = received env conn (cacheCommand data.query)) (wire : Wire) :
    cacheOutcome env data wire = reply.bind fun reply =>
      if reply.len ≠ 0 then some (cachedPacket wire reply) else none := by
  rw [cacheOutcome, hcache, Option.bind_some, hreply]

section Endpoint
variable {env : Env} {id : UInt16} {question : Question} {text : Text} {wire : Wire}
  {data : PluginData} {r : Result}

theorem endpointOutcome_lease (h : leaseOutcome env id question data.query = some r) :
    endpointOutcome env id question text wire data = r := by
  rw [endpointOutcome, h, Option.some_or, Option.getD_some]

theorem endpointOutcome_cached (hlease : leaseOutcome env id question data.query = none)
    (h : cacheOutcome env data wire = some r) :
    endpointOutcome env id question text wire data = r := by
  rw [endpointOutcome, hlease, h, Option.none_or, Option.getD_some]

theorem endpointOutcome_end (hlease : leaseOutcome env id question data.query = none)
    (hcache : cacheOutcome env data wire = none) :
    endpointOutcome env id question text wire data = if data.offline then
      offlineAnswer env id question (offlineRecord data.reverse text data.query) else .ok := by
  rw [endpointOutcome, hlease, hcache, Option.none_or, Option.getD_none]

theorem Kept.endpointOutcome_eq {c s : Call} (h : Kept c s) :
    endpointOutcome env id question text wire s.data =
      endpointOutcome env id question text wire c.data := by
  unfold endpointOutcome cacheOutcome
  rw [h.query, h.cache, h.reverse, h.offline]

end Endpoint

attribute [local spec high] cmdRedis_received

theorem cachedAnswer_exact (env : Env) (wire : Wire) (c : Call) :
    ⦃fun s => ⌜s = c⌝⦄ cachedAnswer env wire
    ⦃⇓ r s => ⌜r = cacheOutcome env c.data wire ∧ s.data = c.data⌝⦄ := by
  unfold cachedAnswer
  mvcgen
  all_goals subst_vars
  case vc1 s data hcache =>
    have hnone : s.data.cache = none := hcache
    rw [cacheOutcome, hnone]
    exact ⟨rfl, rfl⟩
  case vc2 hcache reply hlen s h =>
    rw [cacheOutcome_eq hcache h.2, h.1]
    exact ⟨(if_pos hlen).symm, rfl⟩
  case vc3 hcache reply hlen s h =>
    rw [cacheOutcome_eq hcache h.2, h.1]
    exact ⟨(if_neg hlen).symm, rfl⟩
  case vc4 hcache s h =>
    rw [cacheOutcome_eq hcache h.2, h.1]
    exact ⟨rfl, rfl⟩

attribute [local spec high] localLease_exact cachedAnswer_exact

theorem directEndpoint_exact (env : Env) (id : UInt16) (question : Question) (text : Text)
    (wire : Wire) (c : Call) :
    ⦃fun s => ⌜s = c⌝⦄ directEndpoint env id question text wire
    ⦃⇓ r _ => ⌜r = endpointOutcome env id question text wire c.data⌝⦄ := by
  unfold directEndpoint
  mvcgen
  all_goals subst_vars
  case vc1 hlease => exact (endpointOutcome_lease hlease.1.symm).symm
  case vc2 hnot _ hlease _ _ hcached =>
    obtain rfl := Option.eq_none_iff_forall_ne_some.mpr hnot
    obtain ⟨hnone, rfl⟩ := hlease
    exact (endpointOutcome_cached hnone.symm hcached.1.symm).symm
  case vc3 hnot _ hlease _ hnot' s hcached data hoffline =>
    obtain rfl := Option.eq_none_iff_forall_ne_some.mpr hnot
    obtain rfl := Option.eq_none_iff_forall_ne_some.mpr hnot'
    obtain ⟨hnone, rfl⟩ := hlease
    obtain ⟨hnone', hdata⟩ := hcached
    rw [endpointOutcome_end hnone.symm hnone'.symm, ← hdata, if_pos hoffline]
  case vc4 hnot _ hlease _ hnot' s hcached data hoffline =>
    obtain rfl := Option.eq_none_iff_forall_ne_some.mpr hnot
    obtain rfl := Option.eq_none_iff_forall_ne_some.mpr hnot'
    obtain ⟨hnone, rfl⟩ := hlease
    obtain ⟨hnone', hdata⟩ := hcached
    rw [endpointOutcome_end hnone.symm hnone'.symm, ← hdata, if_neg hoffline]

theorem publishQuery_kept (env : Env) (c : Call) :
    ⦃fun s => ⌜s = c⌝⦄ publishQuery env
    ⦃⇓ r s => ⌜(r = true ↔ Publishable env c) ∧ Kept c s⌝⦄ :=
  fun s hs => ⟨PublishRun.publishable (publishQuery_run env c s hs),
    publishQuery_spec env c s hs⟩

/-- The portal lets a client pass, or answers it with its own record. -/
theorem captivePortal_kept (env : Env) (id : UInt16) (question : Question) (ip4 : Text)
    (c : Call) :
    ⦃fun s => ⌜s = c⌝⦄ captivePortal env id question ip4
    ⦃⇓ r s => ⌜(r = none ↔ ip4 = "127.0.0.1".toList ∨
        ∃ addr, derived env c.data = some addr ∧ LetsBrowse env addr) ∧
      (∀ res, r = some res → res = respond env id question
        (.portal (aRecord c.data.query c.data.ownip4)) (aRecord c.data.query c.data.ownip4)) ∧
      Kept c s⌝⦄ := by
  intro s hs
  obtain ⟨hkept, hresult⟩ := captivePortal_spec env id question ip4 c s hs
  refine ⟨captivePortal_permits env id question ip4 c s hs, fun res hres => ?_, hkept⟩
  rw [hres] at hresult
  exact hresult

end Stages

/-- The call in front of the publication. -/
def savedCall (env : Env) (packet : Packet) (text ip4 : Text) (data : PluginData) : Call :=
  ⟨saveFrom ip4 (saveQuery text packet.client { data with reverse := isReverse env text }),
    reverseSent env text⟩

/-- The four ways in which a call for a text ends. -/
structure Outcome (env : Env) (packet : Packet) (id : UInt16) (question : Question)
    (text ip4 : Text) (data : PluginData) (r : Result) : Prop where
  reverse : ∀ res, reverseOutcome env id question text = some res → r = res
  crash : reverseOutcome env id question text = none →
    ¬ Publishable env (savedCall env packet text ip4 data) → r = .crash
  portal : reverseOutcome env id question text = none →
    Publishable env (savedCall env packet text ip4 data) →
    ¬ Permitted env data.interface packet.client →
      let record := aRecord (text.take maxQuery).dropLast data.ownip4
      r = respond env id question (.portal record) record
  endpoint : reverseOutcome env id question text = none →
    Publishable env (savedCall env packet text ip4 data) →
    Permitted env data.interface packet.client →
      r = endpointOutcome env id question text packet.wire
        (savedCall env packet text ip4 data).data

section Filter
attribute [local spec high] reverseResolution_exact publishQuery_kept captivePortal_kept
  directEndpoint_exact

/-- The portal sees the client and the interface that were there before the publication. -/
theorem passes_portal {env : Env} {packet : Packet} {text ip4 : Text} {data : PluginData}
    {c : Call} (hip : inetNtoa packet.client = some ip4)
    (hkept : Kept (savedCall env packet text ip4 data) c) :
    (ip4 = "127.0.0.1".toList ∨
      ∃ addr, derived env c.data = some addr ∧ LetsBrowse env addr) ↔
        Permitted env data.interface packet.client := by
  have hlocal : ip4 = "127.0.0.1".toList ↔ packet.client = localhost := by
    have hlocalhost : inetNtoa localhost = some "127.0.0.1".toList := by decide
    rw [← inetNtoa_injective.eq_iff, hip, hlocalhost, Option.some.injEq]
  unfold derived Permitted
  rw [hkept.interface, hkept.ip4Addr, hlocal]
  rfl

theorem preFilter_outcome {env : Env} {packet : Packet} {pkt : LdnsPkt} {question : Question}
    {ip4 : Text} {data : PluginData} (h : acceptedQuestion env packet = some (pkt, question))
    (hip : inetNtoa packet.client = some ip4) :
    ⦃fun s => ⌜s = ⟨data, []⟩⌝⦄ dcpluginSyncPreFilter env packet
    ⦃⇓ r _ => ⌜Outcome env packet pkt.id question (questionText env question) ip4 data r⌝⦄ := by
  obtain ⟨hshort, hpkt, hquestion, hne⟩ := acceptedQuestion_eq_some_iff.mp h
  unfold dcpluginSyncPreFilter
  -- The tests that let the packet pass are decided by the hypotheses.
  simp only [gt_iff_lt, Nat.not_lt.mpr hshort, hpkt, hquestion, hip, if_false]
  mvcgen
  all_goals subst_vars
  case vc1 hzero => exact absurd (List.length_eq_zero_iff.mp hzero) hne
  case vc2 _ result _ hreverse =>
    have hsome := hreverse.1
    have hnone := fun h => Option.some_ne_none result (hsome.trans h)
    exact ⟨fun res h => Option.some.inj (hsome.trans h), fun h => absurd h hnone,
      fun h => absurd h hnone, fun h => absurd h hnone⟩
  case vc3 _ x hnot c _ _ r hfail s hreverse hpublish =>
    obtain ⟨rfl, rfl⟩ := hreverse
    have hnot' : ¬ Publishable env (savedCall env packet (questionText env question) ip4 data) := by
      intro hpublishable
      rw [hpublish.1.mpr hpublishable] at hfail
      cases hfail
    exact ⟨fun res h => absurd h (hnot res), fun _ _ => rfl, fun _ h => absurd h hnot',
      fun _ h => absurd h hnot'⟩
  case vc4 _ x hnot c _ _ r hdone s result s' hportal hreverse hpublish =>
    obtain ⟨rfl, rfl⟩ := hreverse
    have hpublishable := hpublish.1.mp (by simpa using hdone)
    have hpasses := passes_portal hip hpublish.2
    refine ⟨fun res h => absurd h (hnot res), fun _ h => absurd hpublishable h,
      fun _ _ _ => ?_, fun _ _ hpermitted => ?_⟩
    · have hresult := hportal.2.1 result rfl
      rw [hpublish.2.query, hpublish.2.ownip4] at hresult
      exact hresult
    · exact absurd (hportal.1.mpr (hpasses.mpr hpermitted)) (Option.some_ne_none result)
  case vc5 _ x hnot c _ _ r hdone s y hpass s' hportal res _ hreverse hpublish =>
    rintro rfl
    obtain ⟨rfl, rfl⟩ := hreverse
    obtain rfl := Option.eq_none_iff_forall_ne_some.mpr hpass
    have hpublishable := hpublish.1.mp (by simpa using hdone)
    have hpermitted := (passes_portal hip hpublish.2).mp (hportal.1.mp rfl)
    exact ⟨fun res h => absurd h (hnot res), fun _ h => absurd hpublishable h,
      fun _ _ h => absurd hpermitted h,
      fun _ _ _ => (hpublish.2.trans hportal.2.2).endpointOutcome_eq⟩

end Filter

section Calls
variable {env : Env} {packet : Packet} {pkt : LdnsPkt} {question : Question} {data : PluginData}

theorem exists_inetNtoa (client : InAddr) : ∃ ip4, inetNtoa client = some ip4 := ⟨_, rfl⟩

theorem call_outcome (h : acceptedQuestion env packet = some (pkt, question)) {ip4 : Text}
    (hip : inetNtoa packet.client = some ip4) :
    Outcome env packet pkt.id question (questionText env question) ip4 data
      (call data (env, packet)).1 :=
  preFilter_outcome h hip ⟨data, []⟩ rfl

theorem call_tooLong (h : packet.wire.length > maxDns) : (call data (env, packet)).1 = .kill := by
  unfold call dcpluginSyncPreFilter
  rw [if_pos h]
  rfl

theorem call_unparsed (h : env.wire2pkt packet.wire = none) :
    (call data (env, packet)).1 = .kill := by
  unfold call dcpluginSyncPreFilter
  dsimp only
  rw [h]
  split <;> rfl

theorem call_noQuestion (hshort : packet.wire.length ≤ maxDns)
    (hpkt : env.wire2pkt packet.wire = some pkt) (h : pkt.question = none) :
    (call data (env, packet)).1 = .crash := by
  unfold call dcpluginSyncPreFilter
  dsimp only
  rw [if_neg (Nat.not_lt.mpr hshort), hpkt]
  dsimp only
  rw [h]
  rfl

theorem call_empty (hshort : packet.wire.length ≤ maxDns)
    (hpkt : env.wire2pkt packet.wire = some pkt) (hquestion : pkt.question = some question)
    (h : questionText env question = []) : (call data (env, packet)).1 = .kill := by
  unfold call dcpluginSyncPreFilter
  dsimp only
  rw [if_neg (Nat.not_lt.mpr hshort), hpkt]
  dsimp only
  rw [hquestion]
  change ((if (questionText env question).length = 0 then _ else _ : StateM Call Result).run _).1
    = _
  rw [h]
  rfl

/-- A packet is too long, it is not parsed, it has no question or an empty one, or its question
is accepted. -/
theorem packet_cases (env : Env) (packet : Packet) :
    packet.wire.length > maxDns ∨ env.wire2pkt packet.wire = none ∨
      (∃ pkt, packet.wire.length ≤ maxDns ∧ env.wire2pkt packet.wire = some pkt ∧
        (pkt.question = none ∨ ∃ question, pkt.question = some question ∧
          questionText env question = [])) ∨
      ∃ pkt question, acceptedQuestion env packet = some (pkt, question) := by
  by_cases hlong : packet.wire.length > maxDns
  · exact .inl hlong
  refine .inr ?_
  have hshort := Nat.le_of_not_lt hlong
  cases hpkt : env.wire2pkt packet.wire with
  | none => exact .inl rfl
  | some pkt =>
      refine .inr ?_
      cases hquestion : pkt.question with
      | none => exact .inl ⟨pkt, hshort, rfl, .inl hquestion⟩
      | some question =>
          by_cases hempty : questionText env question = []
          · exact .inl ⟨pkt, hshort, rfl, .inr ⟨question, hquestion, hempty⟩⟩
          · exact .inr ⟨pkt, question, acceptedQuestion_eq_some_iff.mpr
              ⟨hshort, hpkt, hquestion, hempty⟩⟩

/-- An answer that is not from a lease neither goes on nor counts as one. -/
theorem not_passes_respond {answer : Answer} (h : ∀ text, answer ≠ .lease text) (id : UInt16)
    (record : Text) : ¬ (respond env id question answer record = .ok ∨
      (respond env id question answer record).fromLease) := by
  obtain hr | hr | ⟨wire, hr, -⟩ := respond_cases env id question answer record
  · simp [hr, Result.fromLease]
  · simp [hr, Result.fromLease]
  · rw [hr]
    cases answer with
    | lease text => exact absurd rfl (h text)
    | _ => simp [Result.fromLease]

/-- What is forwarded or answered from a lease has passed the portal. -/
theorem permitted_of_call (h : (call data (env, packet)).1 = .ok ∨
    (call data (env, packet)).1.fromLease) : Permitted env data.interface packet.client := by
  obtain hlong | hnone | ⟨pkt, hshort, hpkt, hnone | ⟨question, hquestion, hempty⟩⟩ |
    ⟨pkt, question, haccepted⟩ := packet_cases env packet
  · simp [call_tooLong hlong, Result.fromLease] at h
  · simp [call_unparsed hnone, Result.fromLease] at h
  · simp [call_noQuestion hshort hpkt hnone, Result.fromLease] at h
  · simp [call_empty hshort hpkt hquestion hempty, Result.fromLease] at h
  · obtain ⟨ip4, hip⟩ := exists_inetNtoa packet.client
    have houtcome := @call_outcome _ _ _ _ data haccepted _ hip
    by_contra hnot
    cases hreverse : reverseOutcome env pkt.id question (questionText env question) with
    | some r =>
        rw [houtcome.reverse r hreverse] at h
        obtain ⟨-, ⟨-, rfl⟩ | ⟨-, rfl⟩ | ⟨-, reply, -, rfl⟩⟩ :=
          reverseOutcome_eq_some_iff.mp hreverse
        · simp [Result.fromLease] at h
        · simp [Result.fromLease] at h
        · refine not_passes_respond (fun text heq => ?_) _ _ h
          cases heq
    | none =>
        by_cases hpublishable :
            Publishable env (savedCall env packet (questionText env question) ip4 data)
        · rw [houtcome.portal hreverse hpublishable hnot] at h
          refine not_passes_respond (fun text heq => ?_) _ _ h
          cases heq
        · rw [houtcome.crash hreverse hpublishable] at h
          simp [Result.fromLease] at h

end Calls

end Dowse.DnsPlugin
