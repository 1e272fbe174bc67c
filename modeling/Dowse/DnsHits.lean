import Dowse.DnsMessages
import Dowse.ExpiringCounters
import Dowse.Strtol

/-!
# The hits in the events

The volatile redis counts the queries for each domain, and every count gives the counter six
more hours. The number in an event is therefore that of the queries for the domain in a row
without a longer pause, the one of the event included, as an `int` of the plugin.

The server answers with its counters while a packet is filtered, at one time for each packet.
Names that do not get through the buffer and the format of a command unchanged are not counted
under their own key, and are left out.
-/
namespace Dowse.DnsPlugin
open CStrings RedisFormat GuardedRuns ExpiringCounters

/-- The lifetime of a counter in milliseconds. -/
def hitsLifetime : ℕ := 1000 * dnsHitExpire

/-- The commands that concern counters. -/
def execute (now : ℕ) (store : Store Text) : List Text → Store Text
  | [verb, key] => if verb = "INCR".toList then incr store now key else store
  | [verb, key, seconds] =>
      if verb = "EXPIRE".toList then expire store now (1000 * Strtol.decimal seconds) key
      else store
  | _ => store

/-- The counters of the volatile redis after a command. -/
def serve (now : ℕ) (store : Store Text) (e : Exchange) : Store Text :=
  if e.conn = .dynamic then (format e.command).elim store (execute now store) else store

/-- The volatile redis replies to a count with the new number. -/
def ServesCounts (now : ℕ) (store : Store Text) (env : Env) : Prop :=
  ∀ command key, format command = some ["INCR".toList, key] →
    env.redis .dynamic command = some ⟨.integer, (count store now key + 1 : ℕ), 0, none⟩

/-- The plugin, the counters of the volatile redis, and the domains that were counted with their
times, the latest first. -/
structure Counting where
  data : PluginData
  store : Store Text
  history : List (Text × ℕ)

/-- The domain that a call counts. -/
def countedDomain (data : PluginData) (ev : Event) : Option Text :=
  (publication data ev).bind fun c => (extraction c.data).map fun extracted => printed extracted.1

/-- A packet at a time of the server. -/
def Counting.step (s : Counting) (ev : ℕ × Event) : Counting where
  data := DnsPlugin.step s.data ev.2
  store := (call s.data ev.2).2.sent.foldl (serve ev.1) s.store
  history := ((countedDomain s.data ev.2).map (·, ev.1)).toList ++ s.history

/-- The servers answer, and the domain is counted under its own key. -/
structure Countable (s : Counting) (ev : ℕ × Event) : Prop where
  counts : ServesCounts ev.1 s.store ev.2.1
  storage : ∀ mac, (nameReply ev.2.1 mac).isSome
  name : ∀ domain, countedDomain s.data ev.2 = some domain →
    ' ' ∉ domain ∧ NameCommand.expireQuery.Fits domain

/-- The messages of a call are its event, as far as it is delivered, and the event has the
number of queries for its domain in a row. -/
def HitsCounted (s : Counting) (ev : ℕ × Event) : Prop :=
  published (call s.data ev.2).2.sent = ((event s.data ev.2).bind Written.delivered).toList ∧
    ∀ w, event s.data ev.2 = some w →
      w.hits = ((streak hitsLifetime w.domain ev.1 s.history + 1 : ℕ) : ℤ).bmod (2 ^ 32)

def queryKey (domain : Text) : Text := "dns-query-".toList ++ domain

theorem queryKey_injective : Function.Injective queryKey := fun _ _ h => List.append_cancel_left h

/-- The counters are those of the domains in the history. -/
def Counting.Kept (s : Counting) : Prop :=
  s.store = summary hitsLifetime (s.history.map fun asked => (queryKey asked.1, asked.2))

theorem fits_incr {domain : Text} (h : NameCommand.expireQuery.Fits domain) :
    NameCommand.incrQuery.Fits domain :=
  ⟨h.1.trans (by decide), h.2.1, nofun⟩

attribute [local irreducible] snprintf

section Server
variable {now : ℕ} {store : Store Text}

theorem serve_of_verb {e : Exchange} (h : ∀ args, format e.command = some args →
    args.head? ≠ some "INCR".toList ∧ args.head? ≠ some "EXPIRE".toList) :
    serve now store e = store := by
  unfold serve
  split
  · cases hargs : format e.command with
    | none => rfl
    | some args =>
        obtain ⟨hincr, hexpire⟩ := h args hargs
        rw [Option.elim_some]
        unfold execute
        split
        · exact if_neg fun hverb => hincr (congrArg some hverb)
        · exact if_neg fun hverb => hexpire (congrArg some hverb)
        · rfl
  · rfl

theorem serve_of_read {e : Exchange} (h : Read e) : serve now store e = store := by
  refine serve_of_verb fun args hargs => ?_
  rcases h.reads hargs with hget | hget <;> rw [hget] <;> decide

theorem serve_of_publish (outnew : Text) (r : Option Reply) :
    serve now store ⟨.dynamic, snprintf 511 (publishCommand outnew), r⟩ = store := by
  refine serve_of_verb fun args hargs => ?_
  rw [(announces_of_text hargs).1]
  decide

theorem foldl_serve_of_read {sent : List Exchange} (h : ∀ e ∈ sent, Read e) :
    sent.foldl (serve now) store = store := by
  induction sent with
  | nil => rfl
  | cons e sent ih =>
      rw [List.forall_mem_cons] at h
      rw [List.foldl_cons, serve_of_read h.1, ih h.2]

theorem serve_of_format {e : Exchange} {args : List Text} (hconn : e.conn = .dynamic)
    (h : format e.command = some args) : serve now store e = execute now store args := by
  rw [serve, if_pos hconn, h, Option.elim_some]

end Server

theorem format_incr {domain : Text} (hspace : ' ' ∉ domain)
    (h : NameCommand.expireQuery.Fits domain) :
    format (snprintf 511 (NameCommand.incrQuery.text domain)) =
      some ["INCR".toList, queryKey domain] :=
  (format_text_iff hspace).mpr (fits_incr h)

theorem foldl_serve_counted {extracted : Option Text} (hspace : ' ' ∉ printed extracted)
    (h : NameCommand.expireQuery.Fits (printed extracted)) (now : ℕ) (store : Store Text)
    (mac : Text) (incr expire named : Option Reply) :
    (counted extracted mac incr expire named).foldl (serve now) store =
      touch hitsLifetime store now (queryKey (printed extracted)) := by
  have hexpire : format (snprintf 511 (NameCommand.expireQuery.text (printed extracted))) =
      some ["EXPIRE".toList, queryKey (printed extracted), "21600".toList] :=
    (format_text_iff hspace).mpr h
  have hseconds : Strtol.decimal "21600".toList = dnsHitExpire := by decide +kernel
  have hnamed : Read ⟨.storage, snprintf 511 (nameCommand mac), named⟩ := read_hgetThing _ _ _ _
  rw [counted_eq, List.foldl_cons, List.foldl_cons, List.foldl_cons, List.foldl_nil,
    serve_of_read hnamed,
    @serve_of_format now store ⟨.dynamic, _, incr⟩ _ rfl (format_incr hspace h),
    @serve_of_format now _ ⟨.dynamic, _, expire⟩ _ rfl hexpire, execute, if_pos rfl, execute,
    if_pos rfl, hseconds]
  rfl

section Packets
variable {s : Counting} {ev : ℕ × Event} {c t : Call} {r : Bool}

theorem countedDomain_of_extraction (hc : publication s.data ev.2 = some c)
    {extracted : Option Text} {names : Names}
    (h : extraction c.data = some (extracted, names)) :
    countedDomain s.data ev.2 = some (printed extracted) := by
  rw [countedDomain, hc, Option.bind_some, h, Option.map_some]

/-- A publication counts its domain once. -/
theorem PublishRun.store (h : PublishRun ev.2.1 c r t) (hcountable : Countable s ev)
    (hc : publication s.data ev.2 = some c) (hread : ∀ e ∈ c.sent, Read e) :
    t.sent.foldl (serve ev.1) s.store = (countedDomain s.data ev.2).elim s.store fun domain =>
      touch hitsLifetime s.store ev.1 (queryKey domain) := by
  cases h with
  | crash hnone =>
      rw [foldl_serve_of_read hread, countedDomain, hc, Option.bind_some, hnone]
      rfl
  | full hsome _ _ hsent =>
      have hdomain := countedDomain_of_extraction hc hsome
      obtain ⟨hspace, hfits⟩ := hcountable.name _ hdomain
      rw [hsent, List.foldl_append, foldl_serve_of_read hread, foldl_serve_counted hspace hfits,
        hdomain, Option.elim_some]
  | done hsome _ _ hsent =>
      have hdomain := countedDomain_of_extraction hc hsome
      obtain ⟨hspace, hfits⟩ := hcountable.name _ hdomain
      rw [hsent, List.foldl_append, List.foldl_append, foldl_serve_of_read hread,
        foldl_serve_counted hspace hfits, hdomain, Option.elim_some, List.foldl_cons,
        serve_of_publish, List.foldl_nil]

/-- A call counts the domain of a packet that gets to the publication, and no other. -/
theorem store_step (h : Countable s ev) :
    (s.step ev).store = (countedDomain s.data ev.2).elim s.store fun domain =>
      touch hitsLifetime s.store ev.1 (queryKey domain) := by
  rw [Counting.step]
  cases call_run s.data ev.2 with
  | silent hnone hread =>
      rw [foldl_serve_of_read hread, countedDomain, hnone]
      rfl
  | publishes hsome hread hrun hadds =>
      obtain ⟨more, hsent, hmore⟩ := hadds
      rw [hsent, List.foldl_append, foldl_serve_of_read hmore]
      exact hrun.store h hsome hread

theorem kept_step (hkept : s.Kept) (h : Countable s ev) : (s.step ev).Kept := by
  rw [Counting.Kept, store_step h, Counting.step]
  cases countedDomain s.data ev.2 with
  | none => exact hkept
  | some domain =>
      rw [Option.elim_some, hkept, touch_summary]
      rfl

/-- Nothing is published without an event when the storage answers. -/
theorem PublishRun.published_eq_nil {env : Env} (h : PublishRun env c r t)
    (hread : ∀ e ∈ c.sent, Read e) (hstorage : ∀ mac, (nameReply env mac).isSome)
    (hnone : writtenEvent env c = none) : published t.sent = [] := by
  cases h with
  | crash => exact published_of_read hread
  | full _ _ _ hsent =>
      rw [hsent, published_append, published_of_read hread, published_counted, List.nil_append]
  | @done extracted names outnew _ _ _ hsome hgroup _ _ =>
      obtain ⟨named, hnamed⟩ := Option.isSome_iff_exists.mp (hstorage c.data.mac)
      rw [writtenEvent, hsome, Option.bind_some] at hnone
      dsimp only at hnone
      rw [hnamed, Option.bind_some, hgroup, Option.isSome_some, if_pos rfl] at hnone
      cases hnone

/-- The messages of a call are those of the event that it writes. -/
theorem published_of_countable (h : Countable s ev) :
    published (call s.data ev.2).2.sent =
      ((event s.data ev.2).bind Written.delivered).toList := by
  cases hevent : event s.data ev.2 with
  | some w => rw [published_call hevent, Option.bind_some]
  | none =>
      rw [Option.bind_none, Option.toList_none]
      cases call_run s.data ev.2 with
      | silent hnone hread => exact published_of_read hread
      | publishes hsome hread hrun hadds =>
          obtain ⟨more, hsent, hmore⟩ := hadds
          rw [event_eq hsome] at hevent
          rw [hsent, published_append, published_of_read hmore, List.append_nil]
          exact hrun.published_eq_nil hread h.storage hevent

theorem incrReply_eq (hkept : s.Kept) (h : Countable s ev) (hc : publication s.data ev.2 = some c)
    {extracted : Option Text} {names : Names}
    (hextraction : extraction c.data = some (extracted, names)) :
    incrReply ev.2.1 extracted = some ⟨.integer,
      (streak hitsLifetime (printed extracted) ev.1 s.history + 1 : ℕ), 0, none⟩ := by
  obtain ⟨hspace, hfits⟩ := h.name _ (countedDomain_of_extraction hc hextraction)
  rw [incrReply_eq_received, received, h.counts _ _ (format_incr hspace hfits), hkept,
    count_summary, streak_map queryKey_injective]
  exact if_pos rfl

/-- The number in an event is the one that the server has counted. -/
theorem hits_of_event (hkept : s.Kept) (h : Countable s ev) {w : Written}
    (hw : event s.data ev.2 = some w) :
    w.hits = ((streak hitsLifetime w.domain ev.1 s.history + 1 : ℕ) : ℤ).bmod (2 ^ 32) := by
  obtain ⟨c, hc, hw⟩ := Option.bind_eq_some_iff.mp hw
  obtain ⟨⟨extracted, names⟩, hextraction, hw⟩ := Option.bind_eq_some_iff.mp hw
  obtain ⟨named, -, hw⟩ := Option.bind_eq_some_iff.mp hw
  rw [Option.ite_none_right_eq_some] at hw
  obtain rfl := Option.some.inj hw.2
  dsimp only [writtenFor]
  rw [incrReply_eq hkept h hc hextraction]
  rfl

end Packets

/-- In every run in which the servers answer and the domains are counted under their own keys, the
messages of every call are its event, and the event has the number of queries for its domain
without a pause of more than six hours. -/
theorem every_event_counted (data : PluginData) {evs : List (ℕ × Event)}
    (h : Along Counting.step Countable ⟨data, fun _ => none, []⟩ evs) :
    Along Counting.step HitsCounted ⟨data, fun _ => none, []⟩ evs :=
  Along.imp (I := Counting.Kept) (fun _ _ hkept hcountable => kept_step hkept hcountable)
    (fun _ _ hkept hcountable =>
      ⟨published_of_countable hcountable, fun _ hw => hits_of_event hkept hcountable hw⟩) rfl h

/-- The replies of a volatile redis that counts; everything else is as in `lanEnv`. -/
def countingReply (now : ℕ) (store : Store Text) (conn : Conn) (command : Text) : Option Reply :=
  if conn = .dynamic ∧ (format command).map List.head? = some (some "INCR".toList) then
    some ⟨.integer, (count store now (((format command).getD []).getD 1 []) + 1 : ℕ), 0, none⟩
  else lanEnv.redis conn command

def countingEnv (now : ℕ) (store : Store Text) : Env :=
  { lanEnv with redis := countingReply now store }

theorem servesCounts_countingEnv (now : ℕ) (store : Store Text) :
    ServesCounts now store (countingEnv now store) := by
  intro command key h
  change countingReply now store .dynamic command = _
  rw [countingReply, h]
  exact if_pos ⟨rfl, rfl⟩

theorem nameReply_countingEnv (now : ℕ) (store : Store Text) (mac : Text) :
    (nameReply (countingEnv now store) mac).isSome := by
  have hreply : ∀ command, (countingEnv now store).redis .storage command =
      lanEnv.redis .storage command := by
    intro command
    change countingReply now store .storage command = _
    exact if_neg (by rintro ⟨⟨⟩, -⟩)
  unfold nameReply received
  rw [hreply, lanEnv]
  dsimp only
  split <;> rfl

/-- One client asks for one name twice, a second apart. -/
def askedFirst : ℕ × Event :=
  (1000, countingEnv 1000 (fun _ => none), ⟨[], ⟨192, 168, 0, 7⟩⟩)

def askedOnce : Counting := Counting.step ⟨lanData, fun _ => none, []⟩ askedFirst

def askedAgain : ℕ × Event :=
  (2000, countingEnv 2000 askedOnce.store, ⟨[], ⟨192, 168, 0, 7⟩⟩)

theorem countable_dyne {s : Counting} {ev : ℕ × Event} (hcounts : ServesCounts ev.1 s.store ev.2.1)
    (hstorage : ∀ mac, (nameReply ev.2.1 mac).isSome)
    (hdomain : countedDomain s.data ev.2 = some "dyne.org".toList) : Countable s ev where
  counts := hcounts
  storage := hstorage
  name domain h := by
    rw [hdomain] at h
    rw [← Option.some.inj h]
    decide

theorem countable_askedFirst : Countable ⟨lanData, fun _ => none, []⟩ askedFirst :=
  countable_dyne (servesCounts_countingEnv _ _) (nameReply_countingEnv _ _) (by decide +kernel)

theorem countable_askedAgain : Countable askedOnce askedAgain :=
  countable_dyne (servesCounts_countingEnv _ _) (nameReply_countingEnv _ _) (by decide +kernel)

theorem every_event_counted_dyne :
    streak hitsLifetime "dyne.org".toList 2000 askedOnce.history = 1 ∧
    Along Counting.step HitsCounted ⟨lanData, fun _ => none, []⟩ [askedFirst, askedAgain] :=
  ⟨by decide +kernel,
    every_event_counted lanData ⟨countable_askedFirst, countable_askedAgain, trivial⟩⟩

end Dowse.DnsPlugin
