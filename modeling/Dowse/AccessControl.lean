import Dowse.DnsAnswers
import Dowse.PartyMode
import Dowse.ThingWrites

/-!
# Who can let a thing browse

The web server, the cycles that execute commands, the scans and the resolver share one store,
and their steps interleave in any way. The reader of the neighbour table writes a database of its
own. A line that was published may be executed at any time, any number of times, with the keys in
any order. A line is approved when it was published by a request of a caller that was an admin at
that moment.

Whatever plain requests other callers send, a thing becomes enabled, in the store or in the
chain, by an approved line that turns it on and by nothing else. The resolver lets the queries of
no other thing through. What the scripts do with texts that are not plain is a parameter; in the
runs of plain requests and scans it is never asked for.
-/
namespace Dowse.AccessControl
open CStrings KeyedHashes ThingStore GuardedRuns CommandActions
open DnsPlugin (beginsYes)

structure House where
  web : WebUi.State
  chain : List Rule
  approved : List Text
  neighbours : Things Text

inductive Event
  | request (req : WebUi.Request)
  | execute (line : Text) (order : List Text)
  | neighbour (thing : List Text) (now : ℕ)
  | scan (hosts : List Discovery.Host)

/-- The lines that a request of an admin publishes. -/
def approves (s : WebUi.State) (req : WebUi.Request) : List Text :=
  if req.route = .cmd ∧ WebUi.callerInfo s req .isadmin = some yes then
    (WebUi.step s req).published.drop s.published.length
  else []

def House.state (s : House) : CommandActions.State := ⟨s.web.things, s.chain⟩

def House.withThings (s : House) (things : Things Text) : House :=
  { s with web := { s.web with things := things } }

instance (text : Text) : Decidable (Plain text) := inferInstanceAs (Decidable (_ ∧ _))

/-- The texts that the scripts print into lines for redis and pass to `iptables` are plain. -/
def Tidy (order : List Text) : Action → Prop
  | .thing _ mac ip => (mac = [] ∨ Plain mac) ∧ (ip = [] ∨ Plain ip)
  | .allThingsOn => ∀ key ∈ order, Plain key
  | .allThingsOff _ => ∀ key ∈ order, Plain key
  | .none => True

instance (order : List Text) (a : Action) : Decidable (Tidy order a) := by
  cases a <;> unfold Tidy <;> infer_instance

/-- What the scripts do to the store and the chain with texts that they take apart. -/
abbrev Shell := List Text → CommandActions.State → Text → CommandActions.State

def runLine (shell : Shell) (order : List Text) (t : CommandActions.State) (line : Text) :
    CommandActions.State :=
  if Tidy order (((CommandPipe.execNextCmd line).map actionOf).getD .none) then
    CommandActions.execute order t line
  else shell order t line

/-- One step of any of the programs. The server lists each key once. -/
def step (cli : Text → Option (List Text)) (shell : Shell) (s : House) : Event → House
  | .request req =>
      { s with web := WebUi.step s.web req, approved := s.approved ++ approves s.web req }
  | .execute line order =>
      if line ∈ s.web.published ∧ order.Perm s.web.things.keys then
        let t := runLine shell order s.state line
        { s.withThings t.things with chain := t.chain }
      else s
  | .neighbour thing now =>
      { s with neighbours := Discovery.neighbourLine s.neighbours thing now }
  | .scan hosts => s.withThings (Discovery.nmapParse cli s.web.things hosts)

def Clean (_ : House) : Event → Prop
  | .request req => PlainRequest req
  | .scan hosts => ∀ host ∈ hosts, PlainHost host
  | _ => True

/-- The store or the chain lets a thing through. -/
def Enabled (t : CommandActions.State) (mac : Text) : Prop :=
  beginsYes (some (DnsPlugin.bulk (hget t.things mac .enableToBrowse))) ∨
    ∃ ip, Rule.accept ip mac ∈ t.chain

/-- The action turns the thing on. -/
def Grants : Action → Text → Prop
  | .thing .on mac' _, mac => mac' = mac
  | .allThingsOn, _ => True
  | _, _ => False

/-- A line does so that an admin asked for. -/
def Granted (s : House) (mac : Text) : Prop :=
  ∃ line ∈ s.approved, ∃ text, CommandPipe.execNextCmd line = some text ∧
    Grants (actionOf text) mac

section Actions

/-- Nothing is let through that was not before. -/
def Narrows (t t' : CommandActions.State) : Prop := ∀ mac, Enabled t' mac → Enabled t mac

theorem narrows_of_lowered {t : CommandActions.State} {things : Things Text}
    (h : Lowered t.things things) : Narrows t ⟨things, t.chain⟩ := by
  rintro mac (hflag | hrule)
  · rcases h mac with hsame | hnone | hno
    · rw [hsame] at hflag
      exact .inl hflag
    · rw [hnone] at hflag
      exact absurd hflag (by decide)
    · rw [hno] at hflag
      exact absurd hflag (by decide)
  · exact .inr hrule

theorem narrows_hset_no {t : CommandActions.State} {key : Text} :
    Narrows t ⟨hset t.things key .enableToBrowse no, t.chain⟩ := by
  refine narrows_of_lowered fun mac => ?_
  rw [hget_hset]
  split_ifs
  · exact .inr (.inr rfl)
  · exact .inl rfl

theorem narrows_set_off (ip mac : Text) (t : CommandActions.State) :
    Narrows t (iptablesSetThing .off ip mac t) := by
  unfold iptablesSetThing
  split_ifs
  · exact fun _ h => h
  · exact fun _ h => h
  · rintro mac' (hflag | ⟨ip', hrule⟩)
    · exact narrows_hset_no mac' (.inl hflag)
    · refine .inr ⟨ip', ?_⟩
      simp only [switchRules, List.mem_append, List.mem_singleton, reduceCtorEq, or_false] at hrule
      exact List.mem_of_mem_erase hrule

theorem narrows_listed_off (t : CommandActions.State) (mac : Text) :
    Narrows t (switchListed .off t mac) := fun mac' h =>
  narrows_hset_no mac' (narrows_set_off _ _ _ mac' h)

theorem narrows_foldl_off (order : List Text) (t : CommandActions.State) :
    Narrows t (order.foldl (switchListed .off) t) := by
  induction order generalizing t with
  | nil => exact fun _ h => h
  | cons mac order ih => exact fun mac' h => narrows_listed_off t mac mac' (ih _ mac' h)

/-- What an action lets through it turns on itself. -/
theorem enabled_of_act {order : List Text} {t : CommandActions.State} {a : Action} {mac : Text}
    (h : Enabled (act order t a) mac) : Enabled t mac ∨ Grants a mac := by
  cases a with
  | none => exact .inl h
  | allThingsOn => exact .inr trivial
  | allThingsOff admin => exact .inl (narrows_foldl_off _ t mac h)
  | thing sw mac' ip =>
      cases sw with
      | off => exact .inl (narrows_set_off ip mac' t mac h)
      | on =>
          by_cases heq : mac' = mac
          · exact .inr heq
          · refine .inl ?_
            simp only [act, iptablesSetThing] at h
            split_ifs at h
            · exact h
            · exact h
            · rcases h with hflag | ⟨ip', hrule⟩
              · rw [hget_hset_of_key_ne (Ne.symm heq)] at hflag
                exact .inl hflag
              · refine .inr ⟨ip', ?_⟩
                simp only [switchRules, List.mem_append, List.mem_singleton,
                  Rule.accept.injEq] at hrule
                rcases hrule with hold | ⟨-, hnew⟩
                · exact List.mem_of_mem_erase hold
                · exact absurd hnew.symm heq

end Actions

section Tidiness

theorem plainStore_iptablesSetThing {t : CommandActions.State} (h : PlainStore t.things)
    {mac : Text} (hmac : mac = [] ∨ Plain mac) (sw : ThingFirewall.Switch) (ip : Text) :
    PlainStore (iptablesSetThing sw ip mac t).things := by
  unfold iptablesSetThing
  split_ifs with hmissing
  · exact h
  · exact h
  · rw [not_or] at hmissing
    exact h.hset (hmac.resolve_left hmissing.2) (by simp)

theorem plainStore_foldl {t : CommandActions.State} (h : PlainStore t.things)
    {order : List Text} (horder : ∀ key ∈ order, Plain key) (sw : ThingFirewall.Switch) :
    PlainStore (order.foldl (switchListed sw) t).things := by
  induction order generalizing t with
  | nil => exact h
  | cons mac order ih =>
      obtain ⟨hmac, hrest⟩ := List.forall_mem_cons.mp horder
      rw [List.foldl_cons, switchListed_plain sw t hmac]
      exact ih (h.hset hmac (by simp)) hrest

/-- An action on plain texts keeps the store plain. -/
theorem plainStore_act {t : CommandActions.State} (h : PlainStore t.things) {order : List Text}
    {a : Action} (ha : Tidy order a) : PlainStore (act order t a).things := by
  cases a with
  | thing sw mac ip => exact plainStore_iptablesSetThing h ha.1 sw ip
  | allThingsOn => exact plainStore_foldl h ha .on
  | allThingsOff mac =>
      exact plainStore_foldl h (fun key hkey => ha key (List.mem_of_mem_filter hkey)) .off
  | none => exact h

/-- The lines that are published are tidy in a plain store. -/
theorem PlainLine.tidy {line : Text} {a : Action} (h : PlainLine line a) {t : Things Text}
    (ht : PlainStore t) {order : List Text} (horder : order.Perm t.keys) : Tidy order a := by
  have hkeys : ∀ key ∈ order, Plain key := fun key hkey => ht.keys key (horder.mem_iff.mp hkey)
  cases h with
  | thing sw now hip hmac hipb => exact ⟨.inr hmac, .inr hipb⟩
  | bulk sw now hip hmac =>
      cases sw with
      | on => exact hkeys
      | off => exact hkeys

theorem PlainLine.runLine {line : Text} {a : Action} (h : PlainLine line a)
    {t : CommandActions.State} (ht : PlainStore t.things) {order : List Text}
    (horder : order.Perm t.things.keys) (shell : Shell) :
    AccessControl.runLine shell order t line = act order t a := by
  obtain ⟨hexec, haction⟩ := h.action
  have htidy := h.tidy ht horder
  rw [AccessControl.runLine, CommandActions.execute, hexec]
  simp only [Option.map_some, Option.getD_some, haction]
  rw [if_pos htidy]

end Tidiness

/-- What was published is plain, and approved or without a grant, the store is plain, and what
is let through was so at the start or is granted. -/
structure Guarded (s₀ s : House) : Prop where
  store : PlainStore s.web.things
  lines : ∀ line ∈ s.web.published, ∃ a, PlainLine line a ∧
    (line ∈ s.approved ∨ ∀ mac, ¬ Grants a mac)
  enabled : ∀ mac, Enabled s.state mac → Enabled s₀.state mac ∨ Granted s mac

section Step
variable {s₀ s : House} (cli : Text → Option (List Text)) (shell : Shell)

theorem Granted.mono {s' : House} (h : s.approved ⊆ s'.approved) {mac : Text}
    (hmac : Granted s mac) : Granted s' mac := by
  obtain ⟨line, hline, text, htext, hgrants⟩ := hmac
  exact ⟨line, h hline, text, htext, hgrants⟩

theorem Guarded.withThings (h : Guarded s₀ s) {things : Things Text}
    (hwritten : Written s.web.things things) : Guarded s₀ (s.withThings things) :=
  ⟨hwritten.plain h.store, h.lines,
    fun mac hmac => h.enabled mac (narrows_of_lowered hwritten.lowered mac hmac)⟩

theorem Guarded.request (h : Guarded s₀ s) {req : WebUi.Request} (hreq : PlainRequest req) :
    Guarded s₀ (step cli shell s (.request req)) := by
  have hwritten := written_request s.web hreq h.store
  refine ⟨hwritten.plain h.store, fun line hline => ?_, fun mac hmac => ?_⟩
  · have hold : line ∈ s.web.published → ∃ a, PlainLine line a ∧
        (line ∈ s.approved ++ approves s.web req ∨ ∀ mac, ¬ Grants a mac) := fun hmem => by
      obtain ⟨a, hplain, hkind⟩ := h.lines line hmem
      exact ⟨a, hplain, hkind.imp_left (List.mem_append_left _)⟩
    change line ∈ (WebUi.step s.web req).published at hline
    cases publishes_request hreq h.store with
    | nothing hsame => exact hold (hsame ▸ hline)
    | @command new a hcmd hadmin hplain hnew =>
        rw [hnew] at hline
        rcases List.mem_append.mp hline with hmem | hmem
        · exact hold hmem
        · obtain rfl := List.mem_singleton.mp hmem
          refine ⟨a, hplain, .inl (List.mem_append_right _ ?_)⟩
          rw [approves, if_pos ⟨hcmd, hadmin⟩, hnew, List.drop_left]
          exact List.mem_singleton_self line
    | off hplain hnew =>
        rw [hnew] at hline
        rcases List.mem_append.mp hline with hmem | hmem
        · exact hold hmem
        · obtain rfl := List.mem_singleton.mp hmem
          exact ⟨_, hplain, .inr fun _ => id⟩
  · refine (h.enabled mac (narrows_of_lowered hwritten.lowered mac hmac)).imp_right ?_
    exact Granted.mono (List.subset_append_left _ _)

theorem Guarded.execute (h : Guarded s₀ s) (line : Text) (order : List Text) :
    Guarded s₀ (step cli shell s (.execute line order)) := by
  simp only [step]
  split_ifs with hline
  · obtain ⟨a, hplain, hkind⟩ := h.lines line hline.1
    have hrun := hplain.runLine (t := s.state) h.store hline.2 shell
    refine ⟨?_, h.lines, fun mac hmac => ?_⟩
    · change PlainStore (runLine shell order s.state line).things
      rw [hrun]
      exact plainStore_act h.store (hplain.tidy h.store hline.2)
    · change Enabled (runLine shell order s.state line) mac at hmac
      rw [hrun] at hmac
      rcases enabled_of_act hmac with hold | hgrants
      · exact h.enabled mac hold
      · obtain ⟨hexec, haction⟩ := hplain.action
        rcases hkind with happroved | hnone
        · exact .inr ⟨line, happroved, line, hexec, haction ▸ hgrants⟩
        · exact absurd hgrants (hnone mac)
  · exact h

variable {cli}

theorem guarded_step (hcli : Discovery.Reads cli) (h : Guarded s₀ s) {ev : Event}
    (hev : Clean s ev) : Guarded s₀ (step cli shell s ev) := by
  cases ev with
  | request req => exact h.request cli shell hev
  | execute line order => exact h.execute cli shell line order
  | neighbour thing now => exact ⟨h.store, h.lines, h.enabled⟩
  | scan hosts => exact h.withThings (written_scan hcli hev _)

theorem guarded_start {s : House} (hstore : PlainStore s.web.things)
    (hpublished : s.web.published = []) : Guarded s s :=
  ⟨hstore, fun _ hline => absurd (hpublished ▸ hline) List.not_mem_nil, fun _ hmac => .inl hmac⟩

end Step

/-- In every run of plain requests and scans from a plain store without published lines,
whatever the interleaving, whoever sends the requests and whatever the scripts do with other texts,
a thing that is let through in the store or in the chain was so at the start, or an admin has
asked for a line that turns it on. -/
theorem enabled_only_by_admin {cli : Text → Option (List Text)} (hcli : Discovery.Reads cli)
    (shell : Shell) {s : House} (hstore : PlainStore s.web.things)
    (hpublished : s.web.published = []) {evs : List Event}
    (hclean : Along (step cli shell) Clean s evs) :
    Throughout (step cli shell)
      (fun t => ∀ mac, Enabled t.state mac → Enabled s.state mac ∨ Granted t mac) s evs :=
  (throughout_of_along (I := Guarded s) (fun _ _ ht hev => guarded_step shell hcli ht hev)
    (guarded_start hstore hpublished) hclean).mono fun _ ht => ht.enabled

/-- The office before anybody has done anything. -/
def officeHouse : House := ⟨office, officeStore.chain, [], ∅⟩

/-- A phone that nobody knows. -/
def guest : WebUi.Request :=
  Discovery.strayRequest "192.168.0.7".toList "02:00:00:00:00:07".toList

def printer : Discovery.Host :=
  ⟨"02:00:00:00:00:0A".toList, fun item =>
    if item = "ip4".toList then "192.168.0.10".toList
    else if item = "vendor".toList then "Acme Ltd.".toList else [], "1500000000".toList⟩

def officeLine : Text :=
  WebUi.commandLine "192.168.0.2".toList (operation .on) 0 "02:00:00:00:00:09".toList
    "192.168.0.9".toList

def officeKeys : List Text :=
  ["02:00:00:00:00:01".toList, "02:00:00:00:00:07".toList, "02:00:00:00:00:09".toList,
    "02:00:00:00:00:0a".toList]

/-- The admin asks for the lamp, the guest for a page, a scan finds the printer, the kernel has
seen the guest, and then the line of the admin is executed. -/
def officeRun : List Event :=
  [.request (officeCommand (operation .on)), .request guest, .scan [printer],
    .neighbour ["192.168.0.7".toList, "dev".toList, "eth0".toList, "lladdr".toList,
      "02:00:00:00:00:07".toList, "STALE".toList] 5,
    .execute officeLine officeKeys]

theorem plainRequest_officeCommand : PlainRequest (officeCommand (operation .on)) := by
  have hcaller : (officeCommand (operation .on)).callerMac = "02:00:00:00:00:01".toList := by
    decide
  have harg : WebUi.arg (officeCommand (operation .on)) "macaddr" =
      some "02:00:00:00:00:09".toList := by decide
  have haddr : (officeCommand (operation .on)).remoteAddr = "192.168.0.2".toList := rfl
  refine ⟨haddr ▸ by simp [Plain], hcaller ▸ plain_desk, fun mac hmac => ?_⟩
  rcases hmac with hmac | hmac | hmac
  · rw [harg, Option.some_inj] at hmac
    exact hmac ▸ plain_lamp
  · cases hmac
  · cases hmac

theorem plainRequest_guest : PlainRequest guest := by
  have haddr : guest.remoteAddr = "192.168.0.7".toList := rfl
  have hcaller : guest.callerMac = "02:00:00:00:00:07".toList := by decide
  refine ⟨haddr ▸ by simp [Plain], hcaller ▸ by simp [Plain], fun mac hmac => ?_⟩
  rcases hmac with hmac | hmac | hmac <;> cases hmac

theorem plainHost_printer : PlainHost printer where
  quotable := by
    refine ⟨by decide, ?_, by decide⟩
    simp only [Discovery.nmapArray, List.forall_mem_cons]
    exact ⟨by decide, by decide, by decide, by decide, by decide,
      List.forall_mem_nil _⟩
  mac _ := by
    have hmac : Discovery.lower printer.mac = "02:00:00:00:00:0a".toList := by decide
    exact hmac ▸ by simp [Plain]
  address item hitem hvalue := by
    rcases List.mem_pair.mp hitem with rfl | rfl
    · exact absurd rfl hvalue
    · have haddr : Discovery.lower (printer.value "ip4".toList) = "192.168.0.10".toList := by decide
      exact haddr ▸ by simp [Plain]

theorem plainStore_office : PlainStore office.things := by
  have hempty : PlainStore ∅ := ⟨nofun, nofun⟩
  refine ((hempty.hset plain_desk ?_).hset plain_desk fun _ => plain_desk).hset plain_desk ?_
    |>.hset plain_lamp ?_
  · simp
  · simp [Plain]
  · simp [Plain]

theorem clean_officeRun (cli : Text → Option (List Text)) (shell : Shell) :
    Along (step cli shell) Clean officeHouse officeRun :=
  ⟨plainRequest_officeCommand, plainRequest_guest,
    fun _ hhost => List.mem_singleton.mp hhost ▸ plainHost_printer, trivial, trivial, trivial⟩

theorem runLine_officeLine (shell : Shell) (order : List Text) (t : CommandActions.State) :
    runLine shell order t officeLine =
      iptablesSetThing .on "192.168.0.9".toList "02:00:00:00:00:09".toList t := by
  have hadmin : Plain "192.168.0.2".toList := by simp [Plain]
  have haddr : Plain "192.168.0.9".toList := by simp [Plain]
  have hline : CommandPipe.execNextCmd officeLine = some officeLine :=
    execNextCmd_plain hadmin (operation_mem .on) plain_lamp (.inr haddr)
  have haction : actionOf officeLine = .thing .on "02:00:00:00:00:09".toList "192.168.0.9".toList :=
    actionOf_thing .on hadmin plain_lamp haddr
  rw [runLine, execute, hline, Option.map_some, Option.getD_some, haction,
    if_pos ⟨.inr plain_lamp, .inr haddr⟩]
  dsimp only
  rw [haction]
  rfl

/-- What the line makes of a house. -/
def House.lampOn (s : House) : House :=
  { s.withThings (hset s.web.things "02:00:00:00:00:09".toList .enableToBrowse yes) with
    chain := switchRules .on "192.168.0.9".toList "02:00:00:00:00:09".toList s.chain }

theorem step_officeLine (cli : Text → Option (List Text)) (shell : Shell) {s : House}
    (hline : officeLine ∈ s.web.published) (hkeys : officeKeys.Perm s.web.things.keys)
    (hflag : hget s.web.things "02:00:00:00:00:09".toList .enableToBrowse ≠ some yes) :
    step cli shell s (.execute officeLine officeKeys) = s.lampOn := by
  rw [step, if_pos ⟨hline, hkeys⟩, runLine_officeLine, iptablesSetThing, if_neg (by decide)]
  rw [if_neg (show hget s.state.things _ _ ≠ some (ThingFirewall.Switch.value .on) from hflag)]
  rfl

/-- The office at the end of the run. -/
def officeEnd : House :=
  (officeRun.dropLast.foldl (step Discovery.splitArgs fun _ t _ => t) officeHouse).lampOn

theorem foldl_officeRun :
    officeRun.foldl (step Discovery.splitArgs fun _ t _ => t) officeHouse = officeEnd :=
  (List.foldl_concat _ _ _ officeRun.dropLast).trans
    (step_officeLine _ _ (by decide +kernel) (by decide +kernel) (by decide +kernel))

/-- The lamp is let through at the end only, and the admin has asked for it. -/
theorem enabled_only_by_admin_office :
    ¬ Enabled officeHouse.state "02:00:00:00:00:09".toList ∧
      Enabled (officeRun.foldl (step Discovery.splitArgs fun _ t _ => t) officeHouse).state
        "02:00:00:00:00:09".toList ∧
      Throughout (step Discovery.splitArgs fun _ t _ => t)
        (fun t => ∀ mac, Enabled t.state mac → Enabled officeHouse.state mac ∨ Granted t mac)
        officeHouse officeRun := by
  refine ⟨?_, ?_, enabled_only_by_admin Discovery.reads_splitArgs _ plainStore_office rfl
    (clean_officeRun _ _)⟩
  · rintro (hflag | ⟨ip, hrule⟩)
    · exact absurd hflag (by decide)
    · cases List.mem_singleton.mp hrule
  · rw [foldl_officeRun]
    exact .inr ⟨_, List.mem_append_right _ (List.mem_singleton_self _)⟩

section Resolver
open DnsPlugin

/-- The query goes on, or it is answered with the address of a device. -/
def Passes (r : Result) : Prop := r = .ok ∨ r.fromLease

/-- What is forwarded or answered from a lease has passed the portal. -/
theorem open_of_passes {env : Env} {db : Database} (hserves : Serves env .storage db)
    {packet : Packet} {data : PluginData} (h : Passes (call data (env, packet)).1) :
    packet.client = localhost ∨ ∃ addr,
      env.arp (data.interface.take 15) packet.client = some addr ∧ Open db addr := by
  refine (permitted_of_call h).imp_right ?_
  rintro ⟨addr, harp, hbrowse⟩
  exact ⟨addr, harp, (hserves.letsBrowse_iff addr).mp hbrowse⟩

/-- The party mode does not let everybody through. -/
def Closed (s : House) : Prop := ¬ beginsYes (some (bulk s.web.partyMode))

theorem closed_step (cli : Text → Option (List Text)) (shell : Shell) {s : House} (h : Closed s)
    (ev : Event) : Closed (step cli shell s ev) := by
  cases ev with
  | request req => exact PartyMode.closed_step (s := ⟨s.web, lanData, none⟩) h (.request req)
  | execute line order =>
      simp only [step]
      split_ifs
      · exact h
      · exact h
  | neighbour thing now => exact h
  | scan hosts => exact h

/-- The resolver sees the store of this moment and lets a packet pass. -/
structure LetsThrough (s : House) (env : Env) (packet : Packet) (data : PluginData) : Prop where
  storage : ∃ db, Serves env .storage db ∧ PartyMode.Mirrors db s.web
  passes : Passes (call data (env, packet)).1

/-- In every such run that starts with the party mode closed, a query that the resolver lets
through comes from the host itself or from a thing that was enabled at the start or that an admin
has asked to turn on. -/
theorem resolver_only_by_admin {cli : Text → Option (List Text)} (hcli : Discovery.Reads cli)
    (shell : Shell) {s : House} (hstore : PlainStore s.web.things)
    (hpublished : s.web.published = []) (hclosed : Closed s) {evs : List Event}
    (hclean : Along (step cli shell) Clean s evs) :
    Throughout (step cli shell) (fun t => ∀ env packet data, LetsThrough t env packet data →
      packet.client = localhost ∨
        ∃ addr, env.arp (data.interface.take 15) packet.client = some addr ∧
          (Enabled s.state (ethernetMactoa addr) ∨ Granted t (ethernetMactoa addr))) s evs := by
  refine (throughout_of_along (I := fun t => Guarded s t ∧ Closed t)
    (fun _ ev ht hev => ⟨guarded_step shell hcli ht.1 hev, closed_step cli shell ht.2 ev⟩)
    ⟨guarded_start hstore hpublished, hclosed⟩ hclean).mono ?_
  rintro t ⟨hguarded, hclosed⟩ env packet data ⟨⟨db, hserves, hmirrors⟩, hpasses⟩
  refine (open_of_passes hserves hpasses).imp_right ?_
  rintro ⟨addr, harp, hopen⟩
  refine ⟨addr, harp, hguarded.enabled _ (.inl ?_)⟩
  rw [Open, hmirrors.partyMode, hmirrors.enable] at hopen
  exact hopen.resolve_left hclosed

/-- The storage of the resolver with the things of the web server. -/
def houseDatabase (s : House) : Database where
  get key := if key = "party_mode".toList then s.web.partyMode else none
  hget key field :=
    if "thing_".toList <+: key ∧ field = "enable_to_browse".toList then
      KeyedHashes.hget s.web.things (key.drop 6) .enableToBrowse
    else none

/-- A network in which the lamp asks for a name. -/
def houseEnv (s : House) : Env :=
  { lanEnv with
    redis := fun _ command => (houseDatabase s).reply command
    arp := fun _ addr =>
      if addr = ⟨192, 168, 0, 9⟩ then some ⟨[2, 0, 0, 0, 0, 9], rfl⟩ else none }

theorem mirrors_houseDatabase (s : House) : PartyMode.Mirrors (houseDatabase s) s.web where
  partyMode := by
    unfold houseDatabase
    dsimp only
    rw [if_pos rfl]
  enable mac := by
    have hkey : ("thing_".toList ++ mac).drop 6 = mac := List.drop_left' (by decide)
    unfold houseDatabase
    dsimp only
    rw [if_pos ⟨List.prefix_append _ _, rfl⟩, hkey]

/-- The query of the lamp is let through at the end. -/
theorem resolver_only_by_admin_office :
    Closed officeHouse ∧
      LetsThrough (officeRun.foldl (step Discovery.splitArgs fun _ t _ => t) officeHouse)
        (houseEnv officeEnd) ⟨[], ⟨192, 168, 0, 9⟩⟩ lanData ∧
      Throughout (step Discovery.splitArgs fun _ t _ => t) (fun t => ∀ env packet data,
        LetsThrough t env packet data → packet.client = localhost ∨
          ∃ addr, env.arp (data.interface.take 15) packet.client = some addr ∧
            (Enabled officeHouse.state (ethernetMactoa addr) ∨ Granted t (ethernetMactoa addr)))
        officeHouse officeRun := by
  have hclosed : Closed officeHouse := by
    unfold Closed
    decide
  refine ⟨hclosed, ?_, resolver_only_by_admin Discovery.reads_splitArgs _ plainStore_office rfl
    hclosed (clean_officeRun _ _)⟩
  rw [foldl_officeRun]
  exact ⟨⟨_, serves_of_reply fun _ => rfl, mirrors_houseDatabase _⟩, .inl (by decide +kernel)⟩

end Resolver

end Dowse.AccessControl
