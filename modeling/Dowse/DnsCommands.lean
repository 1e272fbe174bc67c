import Dowse.DnsFields

/-!
# The commands that the DNS plugin sends

A packet makes the plugin read from the redis servers, and at most once count a domain and
publish an event. The commands carry names that the client has chosen, through the buffer of
`cmd_redis` and the format of hiredis. The verb and the beginning of the key are in front of
the name, so that no name can turn a command into another one.
-/
namespace Dowse.DnsPlugin
open CStrings RedisFormat Std.Do

set_option mvcgen.warning false

/-- A command that reads. -/
def Reads (args : List Text) : Prop :=
  args.head? = some "GET".toList ∨ args.head? = some "HGET".toList

/-- A command on the counter of some name. -/
def Counts (args : List Text) : Prop :=
  (args.head? = some "INCR".toList ∨ args.head? = some "EXPIRE".toList) ∧
    ∃ name, args[1]? = some ("dns-query-".toList ++ name)

/-- A command on the channel of the events. -/
def Announces (args : List Text) : Prop :=
  args.head? = some "PUBLISH".toList ∧ args[1]? = some "dns-query-channel".toList

/-- The arguments of the command only read, or concern a counter or the channel on the volatile
redis. -/
def Confined (e : Exchange) : Prop :=
  ∀ args, format e.command = some args →
    Reads args ∨ e.conn = .dynamic ∧ (Counts args ∨ Announces args)

/-- The call as it comes to the publication, if the packet gets there. -/
def publication (data : PluginData) (ev : Event) : Option Call :=
  if ev.2.wire.length > maxDns then none
  else
    (ev.1.wire2pkt ev.2.wire).bind fun pkt =>
      pkt.question.bind fun question =>
        if (questionText ev.1 question).length = 0 then none
        else if (reverseOutcome ev.1 pkt.id question (questionText ev.1 question)).isSome then
          none
        else (inetNtoa ev.2.client).map fun ip4 =>
          savedCall ev.1 ev.2 (questionText ev.1 question) ip4 data

section Arguments
variable {word stem rest : Text} {args : List Text}

/-- The arguments of a text that begins with a word, as far as it is sent. -/
theorem format_word (hspace : ' ' ∉ word) (hpercent : '%' ∉ word) (hne : word ≠ []) {n : ℕ}
    (hlength : word.length < n) (h : format ((word ++ ' ' :: rest).take n) = some args) :
    ∃ tail, format (rest.take (n - word.length - 1)) = some tail ∧ args = word :: tail := by
  have hroom : n - word.length = (n - word.length - 1) + 1 := by omega
  unfold format at h
  rw [List.take_append, List.take_of_length_le (by omega), hroom, List.take_succ_cons,
    formatLoop_append hspace hpercent, formatLoop_space, Option.map_eq_some_iff] at h
  obtain ⟨tail, htail, heq⟩ := h
  rw [List.nil_append, closed, if_neg hne] at heq
  exact ⟨tail, htail, heq.symm⟩

/-- The key of a text begins with the stem that is in front of the name. -/
theorem format_stem (hspace : ' ' ∉ stem) (hpercent : '%' ∉ stem) (hne : stem ≠ []) {n : ℕ}
    (hlength : stem.length ≤ n) (h : format ((stem ++ rest).take n) = some args) :
    ∃ more others, args = (stem ++ more) :: others := by
  unfold format at h
  rw [List.take_append, List.take_of_length_le hlength, formatLoop_append hspace hpercent,
    List.nil_append] at h
  exact formatLoop_argument hne h

end Arguments

/-- A command of the stages that read. -/
def Read (e : Exchange) : Prop :=
  ∃ rest, e.command = snprintf 511 ("GET".toList ++ ' ' :: rest) ∨
    e.command = snprintf 511 ("HGET".toList ++ ' ' :: rest)

theorem Read.reads {e : Exchange} (h : Read e) {args : List Text}
    (hargs : format e.command = some args) : Reads args := by
  obtain ⟨rest, hget | hget⟩ := h
  · rw [hget] at hargs
    obtain ⟨tail, -, rfl⟩ := format_word (by decide) (by decide) (by decide) (by decide) hargs
    exact .inl rfl
  · rw [hget] at hargs
    obtain ⟨tail, -, rfl⟩ := format_word (by decide) (by decide) (by decide) (by decide) hargs
    exact .inr rfl

theorem published_of_read {sent : List Exchange} (h : ∀ e ∈ sent, Read e) :
    published sent = [] := by
  refine List.filterMap_eq_nil_iff.mpr fun e he => ?_
  split
  · refine Option.eq_none_iff_forall_ne_some.mpr fun msg hmsg => ?_
    have hverb : some "PUBLISH".toList ≠ some "GET".toList := by decide
    have hverb' : some "PUBLISH".toList ≠ some "HGET".toList := by decide
    exact ((h e he).reads (message_eq_some_iff.mp hmsg)).elim hverb hverb'
  · rfl

theorem Read.confined {e : Exchange} (h : Read e) : Confined e :=
  fun _ hargs => .inl (h.reads hargs)

/-- The commands of `s` are those of `c` and others that read. -/
def Adds (c s : Call) : Prop := ∃ more, s.sent = c.sent ++ more ∧ ∀ e ∈ more, Read e

section Stages

theorem Adds.of_sent {c s : Call} (h : s.sent = c.sent) : Adds c s :=
  ⟨[], by rw [h, List.append_nil], List.forall_mem_nil _⟩

theorem Adds.trans {a b c : Call} (h : Adds a b) (h' : Adds b c) : Adds a c := by
  obtain ⟨more, hsent, hmore⟩ := h
  obtain ⟨more', hsent', hmore'⟩ := h'
  refine ⟨more ++ more', by rw [hsent', hsent, List.append_assoc], fun e he => ?_⟩
  exact (List.mem_append.mp he).elim (hmore e) (hmore' e)

theorem Adds.send {c : Call} {data : PluginData} {e : Exchange} (h : Read e) :
    Adds c ⟨data, c.sent ++ [e]⟩ :=
  ⟨[e], rfl, fun _ he => List.mem_singleton.mp he ▸ h⟩

theorem read_get (conn : Conn) {stem : Text} (key : Text) (r : Option Reply)
    (h : stem.take 4 = "GET ".toList) : Read ⟨conn, snprintf 511 (stem ++ key), r⟩ := by
  refine ⟨stem.drop 4 ++ key, .inl ?_⟩
  have hstem : stem = "GET".toList ++ ' ' :: stem.drop 4 :=
    (List.take_append_drop 4 stem).symm.trans (congrArg (· ++ stem.drop 4) h)
  dsimp only
  conv_lhs => rw [hstem]
  rw [List.append_assoc, List.cons_append]

theorem read_hgetThing (conn : Conn) (mac field : Text) (r : Option Reply) :
    Read ⟨conn, snprintf 511 ("HGET thing_".toList ++ mac ++ field), r⟩ := by
  have hverb : "HGET thing_".toList = "HGET".toList ++ ' ' :: "thing_".toList := by decide
  refine ⟨"thing_".toList ++ mac ++ field, .inr ?_⟩
  rw [hverb]
  simp only [List.append_assoc, List.cons_append]

attribute [local irreducible] snprintf
attribute [local spec high] ip4DeriveMac_exact

theorem captivePortal_reads (env : Env) (id : UInt16) (question : Question) (ip4 : Text)
    (c : Call) :
    ⦃fun s => ⌜s = c⌝⦄ captivePortal env id question ip4 ⦃⇓ _ s => ⌜Adds c s⌝⦄ := by
  have hparty : "GET party_mode".toList = "GET party_mode".toList ++ [] := by decide
  have hread : ∀ r, Read ⟨.storage, snprintf 511 "GET party_mode".toList, r⟩ := by
    intro r
    rw [hparty]
    exact read_get _ _ _ (by decide)
  unfold captivePortal
  mvcgen
  all_goals subst_vars
  case vc1 => exact .of_sent rfl
  case vc2 hmac _ _ _ => exact .of_sent (by rw [hmac.2])
  case vc3 hmac _ _ _ _ _ =>
    exact (Adds.of_sent (by rw [hmac.2])).trans (.send (hread _))
  case vc4 hmac _ _ _ _ _ _ _ =>
    exact ((Adds.of_sent (by rw [hmac.2])).trans (.send (hread _))).trans
      (.send (read_hgetThing _ _ _ _))
  case vc5 hmac _ _ _ _ _ _ _ =>
    exact ((Adds.of_sent (by rw [hmac.2])).trans (.send (hread _))).trans
      (.send (read_hgetThing _ _ _ _))

theorem localLease_reads (env : Env) (id : UInt16) (question : Question) (c : Call) :
    ⦃fun s => ⌜s = c⌝⦄ localLease env id question ⦃⇓ _ s => ⌜Adds c s⌝⦄ := by
  mvcgen [-localLease_spec, localLease_exact]
  subst_vars
  rintro - rfl
  exact .send (read_get _ _ _ (by decide))

theorem cachedAnswer_reads (env : Env) (wire : Wire) (c : Call) :
    ⦃fun s => ⌜s = c⌝⦄ cachedAnswer env wire ⦃⇓ _ s => ⌜Adds c s⌝⦄ := by
  unfold cachedAnswer
  mvcgen
  all_goals subst_vars
  case vc1 => exact .of_sent rfl
  all_goals exact .send (read_get _ _ _ (by decide))

attribute [local spec high] captivePortal_reads localLease_reads cachedAnswer_reads

theorem directEndpoint_reads (env : Env) (id : UInt16) (question : Question) (text : Text)
    (wire : Wire) (c : Call) :
    ⦃fun s => ⌜s = c⌝⦄ directEndpoint env id question text wire ⦃⇓ _ s => ⌜Adds c s⌝⦄ := by
  unfold directEndpoint
  mvcgen
  all_goals subst_vars
  case vc1 hlease => exact hlease
  case vc2 hlease _ _ hcached => exact hlease.trans hcached
  case vc3 hlease _ _ _ hcached _ _ => exact hlease.trans hcached
  case vc4 hlease _ _ _ hcached _ _ => exact hlease.trans hcached

theorem read_reverseSent (env : Env) (text : Text) : ∀ e ∈ reverseSent env text, Read e := by
  intro e he
  unfold reverseSent at he
  split at he
  · rw [List.mem_singleton.mp he]
    exact read_get _ _ _ (by decide)
  · cases he

/-- What a call has sent: only reads when the packet does not get to the publication, and
otherwise the commands of the publication between reads. -/
inductive CallRun (data : PluginData) (ev : Event) (s : Call) : Prop
  | silent (hnone : publication data ev = none) (hread : ∀ e ∈ s.sent, Read e)
  | publishes {c t : Call} {r : Bool} (hsome : publication data ev = some c)
      (hread : ∀ e ∈ c.sent, Read e) (hrun : PublishRun ev.1 c r t) (hadds : Adds t s)

section Packet
variable {data : PluginData} {ev : Event} {pkt : LdnsPkt} {question : Question} {ip4 : Text}

theorem CallRun.of_reverse (hpkt : ev.1.wire2pkt ev.2.wire = some pkt)
    (hquestion : pkt.question = some question) {result : Result} {s : Call}
    (h : AfterReverse ev.1 pkt.id question (questionText ev.1 question) ⟨data, []⟩ (some result)
      s) : CallRun data ev s := by
  obtain ⟨houtcome, rfl⟩ := h
  refine .silent ?_ (read_reverseSent _ _)
  simp [publication, hpkt, hquestion, ← houtcome]

theorem CallRun.of_publication (hshort : ¬ ev.2.wire.length > maxDns)
    (hpkt : ev.1.wire2pkt ev.2.wire = some pkt) (hquestion : pkt.question = some question)
    (hne : ¬ (questionText ev.1 question).length = 0) (hip : inetNtoa ev.2.client = some ip4)
    {passed : Option Result} {b t s : Call} {r : Bool}
    (hreverse : AfterReverse ev.1 pkt.id question (questionText ev.1 question) ⟨data, []⟩ passed b)
    (hpassed : ∀ result, passed = some result → False)
    (hrun : PublishRun ev.1
      ⟨saveFrom ip4 (saveQuery (questionText ev.1 question) ev.2.client b.data), b.sent⟩ r t)
    (hadds : Adds t s) : CallRun data ev s := by
  obtain ⟨rfl, rfl⟩ := hreverse
  have hnone := Option.eq_none_iff_forall_ne_some.mpr hpassed
  refine .publishes ?_ (read_reverseSent _ _) hrun hadds
  unfold publication
  rw [if_neg hshort, hpkt, Option.bind_some, hquestion, Option.bind_some, if_neg hne, hnone,
    if_neg (by simp), hip]
  rfl

end Packet

attribute [local spec high] reverseResolution_exact publishQuery_run directEndpoint_reads

/-- The filter as a whole. -/
theorem preFilter_run (data : PluginData) (ev : Event) :
    ⦃fun s => ⌜s = ⟨data, []⟩⌝⦄ dcpluginSyncPreFilter ev.1 ev.2
    ⦃⇓ _ s => ⌜CallRun data ev s⌝⦄ := by
  unfold dcpluginSyncPreFilter
  mvcgen
  all_goals subst_vars
  case vc1 hlong => exact .silent (if_pos hlong) (List.forall_mem_nil _)
  case vc2 pkt hpkt question hquestion text hempty =>
    have hnone : questionText ev.1 question = [] := List.length_eq_zero_iff.mp hempty
    exact .silent (by simp [publication, hpkt, hquestion, hnone]) (List.forall_mem_nil _)
  case vc3 hpkt _ hquestion _ _ _ _ hreverse => exact .of_reverse hpkt hquestion hreverse
  case vc4 hshort _ hpkt _ hquestion _ hne _ hpassed _ _ _ hip _ _ _ _ hreverse hrun =>
    exact .of_publication hshort hpkt hquestion hne hip hreverse hpassed hrun (.of_sent rfl)
  case vc5 hshort _ hpkt _ hquestion _ hne _ hpassed _ _ _ hip _ _ _ _ _ _ hadds hreverse hrun =>
    exact .of_publication hshort hpkt hquestion hne hip hreverse hpassed hrun hadds
  case vc6 hshort _ hpkt _ hquestion _ hne _ hpassed _ _ _ hip _ _ _ _ _ _ _ hportal _ _ hreverse
      hrun =>
    intro hadds
    exact .of_publication hshort hpkt hquestion hne hip hreverse hpassed hrun (hportal.trans hadds)
  case vc7 hnot => exact (hnot _ rfl).elim
  case vc8 hpkt hnot =>
    have hnone := Option.eq_none_iff_forall_ne_some.mpr hnot
    exact .silent (by simp [publication, hpkt, hnone]) (List.forall_mem_nil _)
  case vc9 hnot =>
    have hnone := Option.eq_none_iff_forall_ne_some.mpr hnot
    exact .silent (by simp [publication, hnone]) (List.forall_mem_nil _)

end Stages

theorem call_run (data : PluginData) (ev : Event) : CallRun data ev (call data ev).2 :=
  preFilter_run data ev ⟨data, []⟩ rfl

section Confinement

/-- The text of a command on a counter. -/
theorem counts_of_text {verb rest : Text} {args : List Text}
    (hverb : verb = "INCR".toList ∨ verb = "EXPIRE".toList)
    (h : format (snprintf 511 (verb ++ ' ' :: ("dns-query-".toList ++ rest))) = some args) :
    Counts args := by
  have hclean : ' ' ∉ verb ∧ '%' ∉ verb ∧ verb ≠ [] ∧ verb.length ≤ 6 := by
    rcases hverb with rfl | rfl <;> decide
  obtain ⟨tail, htail, rfl⟩ :=
    format_word hclean.1 hclean.2.1 hclean.2.2.1 (by omega) h
  have hstem : "dns-query-".toList.length = 10 := by decide
  obtain ⟨name, others, rfl⟩ :=
    format_stem (by decide) (by decide) (by decide) (by omega) htail
  refine ⟨?_, name, rfl⟩
  rcases hverb with rfl | rfl
  · exact .inl rfl
  · exact .inr rfl

theorem announces_of_text {outnew : Text} {args : List Text}
    (h : format (snprintf 511 (publishCommand outnew)) = some args) : Announces args := by
  have htext : publishCommand outnew =
      "PUBLISH".toList ++ ' ' :: ("dns-query-channel".toList ++ ' ' :: outnew) := by
    simp only [publishCommand_eq, List.intercalate_cons_cons, List.intercalate_singleton,
      List.append_assoc, List.singleton_append]
  rw [htext] at h
  obtain ⟨tail, htail, rfl⟩ := format_word (by decide) (by decide) (by decide) (by decide) h
  obtain ⟨messages, -, rfl⟩ :=
    format_word (by decide) (by decide) (by decide) (by decide) htail
  exact ⟨rfl, rfl⟩

theorem confined_counted (extracted : Option Text) (mac : Text)
    (incr expire named : Option Reply) :
    ∀ e ∈ counted extracted mac incr expire named, Confined e := by
  have hincr : "INCR dns-query-".toList = "INCR".toList ++ ' ' :: "dns-query-".toList := by decide
  have hexpire : "EXPIRE dns-query-".toList = "EXPIRE".toList ++ ' ' :: "dns-query-".toList := by
    decide
  unfold counted nameCommand
  rw [hincr, hexpire]
  simp only [List.append_assoc, List.cons_append, List.forall_mem_cons]
  refine ⟨fun args h => ?_, fun args h => ?_, ?_, List.forall_mem_nil _⟩
  · exact .inr ⟨rfl, .inl (counts_of_text (.inl rfl) h)⟩
  · exact .inr ⟨rfl, .inl (counts_of_text (.inr rfl) h)⟩
  · rw [← List.append_assoc]
    exact (read_hgetThing _ _ _ _).confined

theorem PublishRun.confined {env : Env} {c s : Call} {r : Bool} (h : PublishRun env c r s)
    (hc : ∀ e ∈ c.sent, Read e) : ∀ e ∈ s.sent, Confined e := by
  have hbefore : ∀ e ∈ c.sent, Confined e := fun e he => (hc e he).confined
  cases h with
  | crash => exact hbefore
  | full _ _ _ hsent =>
      rw [hsent]
      exact List.forall_mem_append.mpr ⟨hbefore, confined_counted _ _ _ _ _⟩
  | done _ _ _ hsent =>
      rw [hsent]
      refine List.forall_mem_append.mpr ⟨hbefore, List.forall_mem_append.mpr
        ⟨confined_counted _ _ _ _ _, ?_⟩⟩
      rw [List.forall_mem_singleton]
      exact fun args h => .inr ⟨rfl, .inr (announces_of_text h)⟩

end Confinement

/-- The messages of a publication: at most the event. -/
theorem PublishRun.published_le {env : Env} {c s : Call} {r : Bool} (h : PublishRun env c r s)
    (hc : ∀ e ∈ c.sent, Read e) : (published s.sent).length ≤ 1 := by
  cases h with
  | crash => simp [published_of_read hc]
  | full _ _ _ hsent =>
      rw [hsent, published_append, published_of_read hc, published_counted]
      exact Nat.zero_le 1
  | done _ _ _ hsent =>
      rw [hsent, published_append, published_append, published_of_read hc, published_counted,
        List.nil_append, List.nil_append, published]
      exact List.length_filterMap_le _ _

/-- Whatever a client asks for and whatever the servers reply, every command of a call only
reads, or counts a domain or publishes an event on the volatile redis, and a call publishes at
most one event. -/
theorem commands_confined (data : PluginData) (ev : Event) :
    (∀ e ∈ (call data ev).2.sent, Confined e) ∧
      (published (call data ev).2.sent).length ≤ 1 := by
  cases call_run data ev with
  | silent _ hread =>
      rw [published_of_read hread]
      exact ⟨fun e he => (hread e he).confined, Nat.zero_le 1⟩
  | publishes _ hread hrun hadds =>
      obtain ⟨more, hsent, hmore⟩ := hadds
      rw [hsent, published_append, published_of_read hmore, List.append_nil]
      exact ⟨List.forall_mem_append.mpr ⟨hrun.confined hread, fun e he => (hmore e he).confined⟩,
        hrun.published_le hread⟩

end Dowse.DnsPlugin
